import KeywordAudit.Json.Printer
import KeywordAudit.Json.Reader
import KeywordAudit.Proofs.JsonForm

/-!
# Reading JSON text that was written

The reader of JSON text obeys the laws of a format that reads JSON: behind any blanks and in front
of any further input, it takes the text of a value, reads the value as it should be read, and leaves
the further input.  It does so in both layouts, on one line and with one entry a line, since they
differ in blanks only.  A text may hold any characters, since what is escaped in writing is restored
in reading.

A written value begins with a sign of its own.  So it is never mistaken for the end of an array or
for a blank, and not for `null` unless it is `null`.
-/

namespace KeywordAudit
namespace Json
namespace Reader

/-- A reader takes a value from the front of an input and leaves the rest. -/
def Takes {α : Type} (r : Reader α) (input : List Char) (x : α) (rest : List Char) : Prop :=
  ∃ h, r input = .ok ⟨x, rest, h⟩

/-! ## Single characters and words -/

/-- Nothing but blanks. -/
def Blank (cs : List Char) : Prop := ∀ c ∈ cs, isSpace c = true

theorem blank_nil : Blank [] := fun _ h => absurd h List.not_mem_nil

/-- Behind any blanks, the next character is the first one that is none. -/
theorem next_cons {blanks : List Char} (hblanks : Blank blanks) {c : Char} (rest : List Char)
    (h : isSpace c = false) :
    next (blanks ++ c :: rest) = .char c rest (by simp; omega) := by
  have hskip : skipSpace (blanks ++ c :: rest) = c :: rest := by
    rw [skipSpace, List.dropWhile_append_of_pos hblanks, List.dropWhile_cons, h]
    rfl
  unfold next
  split
  next hnil =>
    rw [hskip] at hnil
    exact absurd hnil (List.cons_ne_nil _ _)
  next d more hcons =>
    rw [hskip] at hcons
    obtain ⟨rfl, rfl⟩ := List.cons.inj hcons
    rfl

/-- A word is taken from the front of the input. -/
theorem word_append (expected rest : List Char) :
    ∃ h, word expected (expected ++ rest) = .ok ⟨rest, h⟩ := by
  induction expected with
  | nil => exact ⟨Nat.le_refl _, rfl⟩
  | cons c expected ih =>
    obtain ⟨h, hword⟩ := ih
    refine ⟨Nat.le_succ_of_le h, ?_⟩
    show (if c = c then (word expected (expected ++ rest)).map Rest.tail else .error .malformed) = _
    rw [if_pos rfl, hword]
    rfl

/-! ## Texts -/

theorem hexNumber_of_lt : ∀ n < 32,
    Text.hexNumber? 4 0 ['0', '0', hexDigit (n / 16), hexDigit (n % 16)] = some n := by
  decide

theorem codedChar_of_lt {c : Char} (h : c.toNat < 32) (rest : List Char) :
    Takes (codedChar true)
      ('0' :: '0' :: hexDigit (c.toNat / 16) :: hexDigit (c.toNat % 16) :: rest) c rest := by
  refine ⟨by simp; omega, ?_⟩
  have hlow : isLowHalf c.toNat = false := by
    simp [isLowHalf]; omega
  have hhigh : isHighHalf c.toNat = false := by
    simp [isHighHalf]; omega
  simp [codedChar, hexCode, hexNumber_of_lt c.toNat h, hlow, hhigh, Char.ofNat_toNat]

/-- A character that is not escaped stands for itself. -/
theorem textFrom_plain {c : Char} (hquote : c ≠ '"') (hslash : c ≠ '\\')
    (hprintable : ¬ c.toNat < 32) {before rest more : List Char} {s : String}
    (hrest : Takes (textFrom true (c :: before)) rest s more) :
    Takes (textFrom true before) (c :: rest) s more := by
  obtain ⟨h, hrest⟩ := hrest
  refine ⟨Nat.lt_succ_of_lt h, ?_⟩
  rw [textFrom]
  · rw [if_neg hprintable, hrest]
  · exact hquote
  · exact fun hc _ => hslash hc
  · exact fun _ hc _ => hslash hc
  · exact fun _ _ hc _ => hslash hc

/-- A written character is taken from the front of a text. -/
theorem textFrom_escapeChar (c : Char) {before rest more : List Char} {s : String}
    (hrest : Takes (textFrom true (c :: before)) rest s more) :
    Takes (textFrom true before) (escapeChar c ++ rest) s more := by
  unfold escapeChar
  split
  -- the seven characters that are escaped by a letter
  iterate 7
    obtain ⟨h, hrest⟩ := hrest
    refine ⟨by simp; omega, ?_⟩
    simp [textFrom, escaped?, hrest]
  next hquote hslash _ _ _ _ _ =>
    split
    next hlt =>
      obtain ⟨h, hrest⟩ := hrest
      obtain ⟨h', hcoded⟩ := codedChar_of_lt hlt rest
      refine ⟨by simp; omega, ?_⟩
      simp [textFrom, hcoded, hrest]
    next hprintable => exact textFrom_plain hquote hslash hprintable hrest

/-- A written text is taken up to its last quote. -/
theorem textFrom_escaped (cs before rest : List Char) :
    Takes (textFrom true before) (cs.flatMap escapeChar ++ '"' :: rest)
      (String.ofList (before.reverse ++ cs)) rest := by
  induction cs generalizing before with
  | nil =>
    refine ⟨Nat.lt_succ_self _, ?_⟩
    rw [List.append_nil]
    show textFrom true before ('"' :: rest) = _
    rw [textFrom]
  | cons c cs ih =>
    have hrest := ih (c :: before)
    rw [List.reverse_cons, List.append_assoc, List.singleton_append] at hrest
    rw [List.flatMap_cons, List.append_assoc]
    exact textFrom_escapeChar c hrest

theorem textFrom_name (name : String) (rest : List Char) :
    Takes (textFrom true []) (name.toList.flatMap escapeChar ++ '"' :: rest) name rest := by
  have h := textFrom_escaped name.toList [] rest
  rw [List.reverse_nil, List.nil_append, String.ofList_toList] at h
  exact h

theorem toList_quote (s : String) :
    (quote s).toList = '"' :: (s.toList.flatMap escapeChar ++ ['"']) := by
  rw [quote, String.toList_ofList]

/-- Reads a text. -/
theorem text_quote (s : String) {blanks : List Char} (hblanks : Blank blanks) (rest : List Char) :
    Takes text (blanks ++ ((quote s).toList ++ rest)) s rest := by
  rw [toList_quote, List.cons_append, List.append_assoc, List.singleton_append]
  obtain ⟨h, hs⟩ := textFrom_name s rest
  refine ⟨by simp at h ⊢; omega, ?_⟩
  rw [text, next_cons hblanks _ (by decide)]
  simp only [if_true, hs]
  rfl

end Reader

/-! ## Layouts -/

/-- The two layouts of a written value. -/
inductive Layout where
  /-- On one line, without blanks. -/
  | oneLine
  /-- With one entry a line. -/
  | manyLines

namespace Layout

/-- The text of a value that stands at the given level. -/
def text : Layout → Nat → Json → String
  | oneLine, _ => compact
  | manyLines, level => prettyAt level

/-- The blanks in front of an entry. -/
def entryGap : Layout → Nat → List Char
  | oneLine, _ => []
  | manyLines, level => '\n' :: List.replicate (2 * (level + 1)) ' '

/-- The blanks between the last entry and the closing bracket. -/
def closingGap : Layout → Nat → List Char
  | oneLine, _ => []
  | manyLines, level => '\n' :: List.replicate (2 * level) ' '

/-- The blanks between a colon and the value behind it. -/
def valueGap : Layout → List Char
  | oneLine => []
  | manyLines => [' ']

/-- Entries between brackets.  Without entries the brackets stand together. -/
def enclose (l : Layout) (level : Nat) (opening closing : Char) : List (List Char) → List Char
  | [] => [opening, closing]
  | entry :: entries =>
    opening :: (l.entryGap level ++ (entry ++ ((entries.flatMap fun e =>
      ',' :: (l.entryGap level ++ e)) ++ (l.closingGap level ++ [closing]))))

/-- A member of an object as it is written. -/
def memberChars (l : Layout) (level : Nat) (m : String × Json) : List Char :=
  (quote m.1).toList ++ ':' :: (l.valueGap ++ (l.text level m.2).toList)

theorem intercalate_cons (separator entry : List Char) (entries : List (List Char)) :
    separator.intercalate (entry :: entries) =
      entry ++ entries.flatMap fun e => separator ++ e := by
  induction entries generalizing entry with
  | nil => simp
  | cons next entries ih =>
    rw [List.intercalate_cons_cons, ih, List.flatMap_cons, List.append_assoc, List.append_assoc]

/-- Entries on one line. -/
theorem toList_line (level : Nat) (opening closing : Char) (entries : List String) :
    (String.singleton opening ++ String.intercalate "," entries
      ++ String.singleton closing).toList =
      oneLine.enclose level opening closing (entries.map String.toList) := by
  cases entries with
  | nil => simp [enclose]
  | cons entry entries =>
    simp [intercalate_cons, enclose, entryGap, closingGap, List.flatMap_map]

/-- Entries on lines of their own. -/
theorem toList_block (level : Nat) (opening closing : Char) (entries : List String) :
    (block level (String.singleton opening) (String.singleton closing) entries).toList =
      manyLines.enclose level opening closing (entries.map String.toList) := by
  cases entries with
  | nil => simp [block, enclose]
  | cons entry entries =>
    rw [block, if_neg (by simp)]
    simp [intercalate_cons, indentation, enclose, entryGap, closingGap, List.flatMap_map]

theorem compactElements_eq_map (js : List Json) : compactElements js = js.map compact := by
  induction js with
  | nil => rfl
  | cons j js ih => rw [compactElements, ih, List.map_cons]

theorem prettyElements_eq_map (level : Nat) (js : List Json) :
    prettyElements level js = js.map (prettyAt level) := by
  induction js with
  | nil => rfl
  | cons j js ih => rw [prettyElements, ih, List.map_cons]

theorem map_compactMembers (level : Nat) (members : List (String × Json)) :
    (compactMembers members).map String.toList = members.map (oneLine.memberChars level) := by
  induction members with
  | nil => rfl
  | cons m members ih =>
    rw [compactMembers, List.map_cons, List.map_cons, ih]
    simp [memberChars, valueGap, text]

theorem map_prettyMembers (level : Nat) (members : List (String × Json)) :
    (prettyMembers level members).map String.toList =
      members.map (manyLines.memberChars level) := by
  induction members with
  | nil => rfl
  | cons m members ih =>
    rw [prettyMembers, List.map_cons, List.map_cons, ih]
    simp [memberChars, valueGap, text]

/-- An array as it is written. -/
theorem toList_array (l : Layout) (level : Nat) (js : List Json) :
    (l.text level (.array js)).toList =
      l.enclose level '[' ']' (js.map fun j => (l.text (level + 1) j).toList) := by
  cases l with
  | oneLine =>
    show (compact (.array js)).toList = _
    rw [compact, compactElements_eq_map]
    refine (toList_line level '[' ']' (js.map compact)).trans ?_
    rw [List.map_map]
    rfl
  | manyLines =>
    show (prettyAt level (.array js)).toList = _
    rw [prettyAt, prettyElements_eq_map]
    refine (toList_block level '[' ']' (js.map (prettyAt (level + 1)))).trans ?_
    rw [List.map_map]
    rfl

/-- An object as it is written. -/
theorem toList_object (l : Layout) (level : Nat) (members : List (String × Json)) :
    (l.text level (.object members)).toList =
      l.enclose level '\x7b' '\x7d' (members.map (l.memberChars (level + 1))) := by
  cases l with
  | oneLine =>
    show (compact (.object members)).toList = _
    rw [compact, ← map_compactMembers]
    exact toList_line level '\x7b' '\x7d' (compactMembers members)
  | manyLines =>
    show (prettyAt level (.object members)).toList = _
    rw [prettyAt, ← map_prettyMembers]
    exact toList_block level '\x7b' '\x7d' (prettyMembers (level + 1) members)

theorem text_string (l : Layout) (level : Nat) (s : String) :
    l.text level (.string s) = quote s := by
  cases l with
  | oneLine =>
    show compact (.string s) = quote s
    rw [compact]
  | manyLines =>
    show prettyAt level (.string s) = quote s
    rw [prettyAt]

theorem text_bool (l : Layout) (level : Nat) (b : Bool) :
    l.text level (.bool b) = if b then "true" else "false" := by
  cases l with
  | oneLine =>
    show compact (.bool b) = _
    rw [compact]
  | manyLines =>
    show prettyAt level (.bool b) = _
    rw [prettyAt]

theorem text_null (l : Layout) (level : Nat) : l.text level .null = "null" := by
  cases l with
  | oneLine =>
    show compact .null = _
    rw [compact]
  | manyLines =>
    show prettyAt level .null = _
    rw [prettyAt]

theorem blank_replicate (n : Nat) : Reader.Blank (List.replicate n ' ') := by
  intro c hc
  rw [List.eq_of_mem_replicate hc]
  rfl

theorem blank_entryGap (l : Layout) (level : Nat) : Reader.Blank (l.entryGap level) := by
  cases l with
  | oneLine => exact Reader.blank_nil
  | manyLines => exact List.forall_mem_cons.2 ⟨rfl, blank_replicate _⟩

theorem blank_closingGap (l : Layout) (level : Nat) : Reader.Blank (l.closingGap level) := by
  cases l with
  | oneLine => exact Reader.blank_nil
  | manyLines => exact List.forall_mem_cons.2 ⟨rfl, blank_replicate _⟩

theorem blank_valueGap (l : Layout) : Reader.Blank l.valueGap := by
  cases l with
  | oneLine => exact Reader.blank_nil
  | manyLines => exact blank_replicate 1

end Layout

namespace Reader

/-! ## Where values begin and end -/

/-- A written value begins with a sign of its own: with no blank, not with the end of an array, and
with the first letter of `null` only if it is `null`. -/
def Begins (j : Json) (cs : List Char) : Prop :=
  ∃ c rest, cs = c :: rest ∧ isSpace c = false ∧ c ≠ ']' ∧ (c = 'n' → j = .null)

theorem begins_cons {c : Char} (h : isSpace c = false ∧ c ≠ ']' ∧ c ≠ 'n') (rest : List Char)
    (j : Json) : Begins j (c :: rest) :=
  ⟨c, rest, rfl, h.1, h.2.1, fun hn => absurd hn h.2.2⟩

/-- What follows a written value: a blank, a comma or a closing bracket, or nothing. -/
def Ends (rest : List Char) : Prop :=
  ∀ c, rest.head? = some c → isSpace c = true ∨ c ∈ [',', ']', '\x7d']

theorem ends_nil : Ends [] := nofun

theorem ends_closing {blanks : List Char} (hblanks : Blank blanks) {closing : Char}
    (hclosing : closing ∈ [',', ']', '\x7d']) (rest : List Char) :
    Ends (blanks ++ closing :: rest) := by
  intro c hc
  cases blanks with
  | nil =>
    rw [← Option.some.inj hc]
    exact .inr hclosing
  | cons b blanks =>
    rw [← Option.some.inj hc]
    exact .inl (hblanks b List.mem_cons_self)

/-- An entry is followed by the comma of the next one, or by the end of the bracket. -/
theorem ends_entries {α : Type} {f : α → List Char} (entries : List α) {blanks : List Char}
    (hblanks : Blank blanks) {closing : Char} (hclosing : closing ∈ [',', ']', '\x7d'])
    (rest : List Char) :
    Ends ((entries.flatMap fun e => ',' :: f e) ++ (blanks ++ closing :: rest)) := by
  cases entries with
  | nil => exact ends_closing hblanks hclosing rest
  | cons e entries => exact ends_closing blank_nil (by decide : ',' ∈ _) _

/-- A reader reads a JSON value as something: in both layouts and at every level, it takes the text
of the value, behind any blanks and in front of what may follow a value. -/
def ReadsText {α : Type} (r : Reader α) (j : Json) (x : α) : Prop :=
  ∀ (l : Layout) (level : Nat), Begins j (l.text level j).toList ∧
    ∀ blanks rest, Blank blanks → Ends rest →
      Takes r (blanks ++ ((l.text level j).toList ++ rest)) x rest

/-! ## Truth values -/

theorem flag_bool (b : Bool) {blanks : List Char} (hblanks : Blank blanks) (rest : List Char) :
    Takes flag (blanks ++ ((if b then "true" else "false" : String).toList ++ rest)) b rest := by
  cases b with
  | true =>
    obtain ⟨h, hword⟩ := word_append ['r', 'u', 'e'] rest
    refine ⟨by simp; omega, ?_⟩
    show flag (blanks ++ 't' :: (['r', 'u', 'e'] ++ rest)) = _
    rw [flag, next_cons hblanks _ (by decide)]
    simp only [if_true, hword]
    rfl
  | false =>
    obtain ⟨h, hword⟩ := word_append ['a', 'l', 's', 'e'] rest
    refine ⟨by simp; omega, ?_⟩
    show flag (blanks ++ 'f' :: (['a', 'l', 's', 'e'] ++ rest)) = _
    rw [flag, next_cons hblanks _ (by decide)]
    simp only [Char.reduceEq, if_false, if_true, hword]
    rfl

/-! ## Arrays -/

theorem nextElement_end (isFirst : Bool) {blanks : List Char} (hblanks : Blank blanks)
    (rest : List Char) :
    nextElement isFirst (blanks ++ ']' :: rest) = .ok (.finish rest (by simp; omega)) := by
  rw [nextElement, next_cons hblanks _ (by decide)]
  rfl

theorem nextElement_first {blanks cs : List Char} {j : Json} (hblanks : Blank blanks)
    (hbegins : Begins j cs) (rest : List Char) :
    nextElement true (blanks ++ (cs ++ rest)) = .ok (.element .all) := by
  obtain ⟨c, more, rfl, hspace, hend, -⟩ := hbegins
  rw [nextElement, List.cons_append, next_cons hblanks _ hspace]
  simp only [hend, if_false, if_true]

theorem nextElement_comma {blanks cs : List Char} {j : Json} (hblanks : Blank blanks)
    (hbegins : Begins j cs) (rest : List Char) :
    nextElement false (',' :: (blanks ++ (cs ++ rest))) =
      .ok (.element ⟨blanks ++ (cs ++ rest), Nat.le_succ _⟩) := by
  obtain ⟨c, more, rfl, hspace, hend, -⟩ := hbegins
  rw [nextElement, show next (',' :: _) = _ from next_cons blank_nil _ (by decide)]
  simp only [Char.reduceEq, if_false, Bool.false_eq_true, if_true]
  rw [List.cons_append, next_cons hblanks _ hspace]
  simp only [hend, if_false]
  rfl

theorem elements_end {α : Type} (r : Reader α) (isFirst : Bool) {blanks : List Char}
    (hblanks : Blank blanks) (rest : List Char) :
    Takes (elements r isFirst) (blanks ++ ']' :: rest) [] rest := by
  refine ⟨by simp; omega, ?_⟩
  rw [elements, nextElement_end isFirst hblanks]

/-- One element is taken, and then those after it. -/
theorem elements_step {α : Type} {r : Reader α} {isFirst : Bool} {input tail rest : List Char}
    {start : Rest input} {x : α} {xs : List α}
    (hentry : nextElement isFirst input = .ok (.element start))
    (hread : Takes r start.val x tail) (hmore : Takes (elements r false) tail xs rest) :
    Takes (elements r isFirst) input (x :: xs) rest := by
  obtain ⟨h, hread⟩ := hread
  obtain ⟨h', hmore⟩ := hmore
  refine ⟨Nat.lt_of_lt_of_le (Nat.lt_trans h' h) start.property, ?_⟩
  rw [elements, hentry]
  simp only [hread, hmore]
  rfl

/-- The elements after the first are taken up to the end of the array. -/
theorem elements_more {α : Type} {r : Reader α} {js : List Json} {xs : List α}
    (h : List.Forall₂ (ReadsText r) js xs) (l : Layout) (level : Nat) (rest : List Char) :
    Takes (elements r false) ((js.flatMap fun j =>
      ',' :: (l.entryGap level ++ (l.text (level + 1) j).toList)) ++
        (l.closingGap level ++ ']' :: rest)) xs rest := by
  induction h with
  | nil => exact elements_end r false (l.blank_closingGap level) rest
  | @cons j x js xs hx _ ih =>
    obtain ⟨hbegins, htakes⟩ := hx l (level + 1)
    have hends := ends_entries js (f := fun j => l.entryGap level ++ (l.text (level + 1) j).toList)
      (l.blank_closingGap level) (by decide : ']' ∈ _) rest
    rw [List.flatMap_cons, List.append_assoc, List.cons_append, List.append_assoc]
    exact elements_step (nextElement_comma (l.blank_entryGap level) hbegins _)
      (htakes _ _ (l.blank_entryGap level) hends) ih

/-- Reads an array. -/
theorem list_array {α : Type} {r : Reader α} {js : List Json} {xs : List α}
    (h : List.Forall₂ (ReadsText r) js xs) (l : Layout) (level : Nat) {blanks : List Char}
    (hblanks : Blank blanks) (rest : List Char) :
    Takes (list r) (blanks ++ ((l.text level (.array js)).toList ++ rest)) xs rest := by
  -- the elements are taken behind the bracket that opens the array
  have hopen : ∀ inner, Takes (elements r true) inner xs rest →
      Takes (list r) (blanks ++ '[' :: inner) xs rest := by
    rintro inner ⟨hshorter, helements⟩
    refine ⟨by simp; omega, ?_⟩
    rw [list, next_cons hblanks _ (by decide)]
    simp only [if_true, helements]
    rfl
  rw [Layout.toList_array]
  cases h with
  | nil => exact hopen _ (elements_end r true blank_nil rest)
  | @cons j x js xs hx hxs =>
    obtain ⟨hbegins, htakes⟩ := hx l (level + 1)
    have hends := ends_entries js (f := fun j => l.entryGap level ++ (l.text (level + 1) j).toList)
      (l.blank_closingGap level) (by decide : ']' ∈ _) rest
    rw [List.map_cons, Layout.enclose, List.flatMap_map, List.cons_append]
    simp only [List.append_assoc, List.singleton_append]
    exact hopen _ (elements_step (nextElement_first (l.blank_entryGap level) hbegins _)
      (htakes _ _ (l.blank_entryGap level) hends) (elements_more hxs l level rest))

/-! ## Objects -/

theorem nextMember_end (isFirst : Bool) {blanks : List Char} (hblanks : Blank blanks)
    (rest : List Char) :
    nextMember isFirst (blanks ++ '\x7d' :: rest) = .ok (.finish rest (by simp; omega)) := by
  rw [nextMember, next_cons hblanks _ (by decide)]
  rfl

theorem nextMember_first {blanks : List Char} (hblanks : Blank blanks) (rest : List Char) :
    ∃ h, nextMember true (blanks ++ '"' :: rest) = .ok (.element ⟨rest, h⟩) := by
  refine ⟨by simp; omega, ?_⟩
  rw [nextMember, next_cons hblanks _ (by decide)]
  rfl

theorem nextMember_comma {blanks : List Char} (hblanks : Blank blanks) (rest : List Char) :
    ∃ h, nextMember false (',' :: (blanks ++ '"' :: rest)) = .ok (.element ⟨rest, h⟩) := by
  refine ⟨by simp; omega, ?_⟩
  rw [nextMember, show next (',' :: _) = _ from next_cons blank_nil _ (by decide)]
  simp only [Char.reduceEq, if_false, Bool.false_eq_true, if_true]
  rw [next_cons hblanks _ (by decide)]
  rfl

theorem colon_cons (rest : List Char) : Takes colon (':' :: rest) () rest := by
  refine ⟨Nat.lt_succ_self _, ?_⟩
  rw [colon, show next (':' :: _) = _ from next_cons blank_nil _ (by decide)]
  rfl

section Members

variable {Draft : Type} {fields : List (Field Reader Draft)}

theorem members_end (isFirst : Bool) (draft : Draft) {blanks : List Char} (hblanks : Blank blanks)
    (rest : List Char) :
    Takes (members fields isFirst draft) (blanks ++ '\x7d' :: rest) draft rest := by
  refine ⟨by simp; omega, ?_⟩
  rw [members, nextMember_end isFirst hblanks]

/-- One member is taken, and then those after it. -/
theorem members_step {isFirst : Bool} {name : String} {field : Field Reader Draft} {value : Json}
    {update : Draft → Draft} {draft final : Draft} {input tail rest : List Char} {l : Layout}
    {level : Nat} {start : Rest input} (hentry : nextMember isFirst input = .ok (.element start))
    (hstart : start.val = name.toList.flatMap escapeChar ++
      '"' :: ':' :: (l.valueGap ++ ((l.text level value).toList ++ tail)))
    (hfield : Format.fieldNamed? fields name = some field) (hunset : field.isSet draft = false)
    (hread : ReadsText field.read value update) (hends : Ends tail)
    (hmore : Takes (members fields false (update draft)) tail final rest) :
    Takes (members fields isFirst draft) input final rest := by
  have hname := textFrom_name name (':' :: (l.valueGap ++ ((l.text level value).toList ++ tail)))
  rw [← hstart] at hname
  obtain ⟨h1, hname⟩ := hname
  obtain ⟨h2, hcolon⟩ := colon_cons (l.valueGap ++ ((l.text level value).toList ++ tail))
  obtain ⟨h3, hvalue⟩ := (hread l level).2 l.valueGap tail l.blank_valueGap hends
  obtain ⟨h4, hmore⟩ := hmore
  refine ⟨?_, ?_⟩
  · exact Nat.lt_of_lt_of_le (Nat.lt_trans (Nat.lt_trans (Nat.lt_trans h4 h3) h2) h1) start.property
  · rw [members, hentry]
    simp only [hname, memberValue, hfield, hunset, Bool.false_eq_true, if_false, hcolon, hvalue]
    simp only [Except.map, Taken.map, Taken.after, hmore]
    rfl

/-- The characters of a written member. -/
theorem memberChars_append (l : Layout) (level : Nat) (m : String × Json) (rest : List Char) :
    l.memberChars level m ++ rest = '"' :: (m.1.toList.flatMap escapeChar ++
      '"' :: ':' :: (l.valueGap ++ ((l.text level m.2).toList ++ rest))) := by
  simp [Layout.memberChars, toList_quote]

/-- The members after the first are taken up to the end of the object. -/
theorem members_more {entries : List (String × Json)} {draft final : Draft}
    (h : Fills ReadsText fields entries draft final) (l : Layout) (level : Nat)
    (rest : List Char) :
    Takes (members fields false draft) ((entries.flatMap fun m =>
      ',' :: (l.entryGap level ++ l.memberChars (level + 1) m)) ++
        (l.closingGap level ++ '\x7d' :: rest)) final rest := by
  induction h with
  | nil => exact members_end false _ (l.blank_closingGap level) rest
  | @cons name value entries _ _ _ _ hfield hunset hread _ ih =>
    have hends := ends_entries entries
      (f := fun m => l.entryGap level ++ l.memberChars (level + 1) m)
      (l.blank_closingGap level) (by decide : '\x7d' ∈ _) rest
    rw [List.flatMap_cons, List.append_assoc, List.cons_append, List.append_assoc,
      memberChars_append]
    obtain ⟨h, hentry⟩ := nextMember_comma (l.blank_entryGap level) _
    exact members_step hentry rfl hfield hunset hread hends ih

/-- Reads an object as a record. -/
theorem record_object {α : Type} {entries : List (String × Json)} {start final : Draft}
    {finish : Draft → Option α} {x : α} (h : Fills ReadsText fields entries start final)
    (hfinish : finish final = some x) (l : Layout) (level : Nat) {blanks : List Char}
    (hblanks : Blank blanks) (rest : List Char) :
    Takes (record fields start finish) (blanks ++ ((l.text level (.object entries)).toList ++ rest))
      x rest := by
  -- the members are taken behind the bracket that opens the object
  have hopen : ∀ inner, Takes (members fields true start) inner final rest →
      Takes (record fields start finish) (blanks ++ '\x7b' :: inner) x rest := by
    rintro inner ⟨hshorter, hmembers⟩
    refine ⟨by simp; omega, ?_⟩
    rw [record, next_cons hblanks _ (by decide)]
    simp only [Char.reduceEq, if_false, if_true, hmembers]
    simp only [Except.bind, finishDraft, hfinish]
    rfl
  rw [Layout.toList_object]
  cases h with
  | nil => exact hopen _ (members_end true _ blank_nil rest)
  | @cons name value entries _ _ _ _ hfield hunset hread hrest =>
    have hends := ends_entries entries
      (f := fun m => l.entryGap level ++ l.memberChars (level + 1) m)
      (l.blank_closingGap level) (by decide : '\x7d' ∈ _) rest
    rw [List.map_cons, Layout.enclose, List.flatMap_map, List.cons_append]
    simp only [List.append_assoc, List.singleton_append]
    rw [memberChars_append]
    obtain ⟨h, hentry⟩ := nextMember_first (l.blank_entryGap level) _
    exact hopen _
      (members_step hentry rfl hfield hunset hread hends (members_more hrest l level rest))

end Members

/-! ## The laws -/

theorem optional_of_reads {α : Type} {r : Reader α} {j : Json} {x : α} (hj : j ≠ .null)
    (h : ReadsText r j x) : ReadsText (optional r) j (some x) := by
  intro l level
  obtain ⟨hbegins, htakes⟩ := h l level
  refine ⟨hbegins, fun blanks rest hblanks hends => ?_⟩
  obtain ⟨hshorter, hread⟩ := htakes blanks rest hblanks hends
  obtain ⟨c, more, hcs, hspace, -, hnull⟩ := hbegins
  refine ⟨hshorter, ?_⟩
  have hnext : ∃ hc,
      next (blanks ++ ((l.text level j).toList ++ rest)) = .char c (more ++ rest) hc := by
    rw [hcs]
    exact ⟨_, next_cons hblanks _ hspace⟩
  obtain ⟨hc, hnext⟩ := hnext
  rw [optional, hnext]
  split
  next heq =>
    injection heq with hn
    exact absurd (hnull hn) hj
  next =>
    rw [map, hread]
    rfl

theorem optional_null {α : Type} (r : Reader α) : ReadsText (optional r) .null none := by
  intro l level
  rw [Layout.text_null]
  refine ⟨⟨'n', ['u', 'l', 'l'], rfl, by decide, by decide, fun _ => rfl⟩, ?_⟩
  intro blanks rest hblanks _
  obtain ⟨h, hword⟩ := word_append ['u', 'l', 'l'] rest
  refine ⟨by simp; omega, ?_⟩
  show optional r (blanks ++ 'n' :: (['u', 'l', 'l'] ++ rest)) = _
  rw [optional, next_cons hblanks _ (by decide)]
  simp only [hword]
  rfl

/-- A bracket that opens begins a value. -/
theorem begins_enclose (l : Layout) (level : Nat) {opening : Char} (closing : Char)
    (hopening : opening = '[' ∨ opening = '\x7b') (entries : List (List Char)) (j : Json) :
    Begins j (l.enclose level opening closing entries) := by
  have hsign : isSpace opening = false ∧ opening ≠ ']' ∧ opening ≠ 'n' := by
    rcases hopening with rfl | rfl <;> decide
  cases entries with
  | nil => exact begins_cons hsign _ j
  | cons e entries => exact begins_cons hsign _ j

/-- JSON text is read according to the laws. -/
instance : ReadsJson Reader where
  Reads := ReadsText
  map {α β f r j x} h := by
    intro l level
    refine ⟨(h l level).1, fun blanks rest hblanks hends => ?_⟩
    obtain ⟨hshorter, hread⟩ := (h l level).2 blanks rest hblanks hends
    refine ⟨hshorter, ?_⟩
    show (r _).map _ = _
    rw [hread]
    rfl
  text s := by
    intro l level
    rw [Layout.text_string]
    refine ⟨?_, fun blanks rest hblanks _ => text_quote s hblanks rest⟩
    rw [toList_quote]
    exact begins_cons (by decide) _ _
  flag b := by
    intro l level
    rw [Layout.text_bool]
    refine ⟨?_, fun blanks rest hblanks _ => flag_bool b hblanks rest⟩
    cases b with
    | true => exact begins_cons (c := 't') (by decide) _ _
    | false => exact begins_cons (c := 'f') (by decide) _ _
  list h := by
    intro l level
    refine ⟨?_, fun blanks rest hblanks _ => list_array h l level hblanks rest⟩
    rw [Layout.toList_array]
    exact begins_enclose l level ']' (.inl rfl) _ _
  optional hj h := optional_of_reads hj h
  record hfills hfinish := by
    intro l level
    refine ⟨?_, fun blanks rest hblanks _ => record_object hfills hfinish l level hblanks rest⟩
    rw [Layout.toList_object]
    exact begins_enclose l level '\x7d' (.inr rfl) _ _

/-- A text is read when its reader takes all of it. -/
theorem read_of_takes {α : Type} {r : Reader α} {content : String} {x : α}
    (h : Takes r content.toList x []) : read r content = .ok x := by
  obtain ⟨h, htakes⟩ := h
  rw [read, htakes]
  rfl

/-- The whole text of a value is read as the value is read, in both layouts. -/
theorem ReadsText.read_text {α : Type} {r : Reader α} {j : Json} {x : α} (h : ReadsText r j x)
    (l : Layout) : read r (l.text 0 j) = .ok x := by
  have htakes := (h l 0).2 [] [] blank_nil ends_nil
  rw [List.nil_append, List.append_nil] at htakes
  exact read_of_takes htakes

end Reader
end Json
end KeywordAudit
