import KeywordAudit.Format.Schema
import KeywordAudit.Json.Reader.Skip

/-!
# Reading records from JSON text

A record is an object, in which unknown names are passed over, or an array of its fields in order,
in which fields at the end may be left out.  A field that was given before is refused as soon as
its name is read.
-/

namespace KeywordAudit
namespace Json
namespace Reader

/-! ## Values of the wrong kind -/

/-- The fault of a word that begins a value of the wrong kind. -/
def wordFault (expected input : List Char) : Fault :=
  match word expected input with
  | .error f => f
  | .ok _ => .mismatch

/-- The fault of a number where none is asked for: numbers out of range are malformed. -/
def numberFault {input : List Char} : Except Fault (Numeral × Rest input) → Fault
  | .error f => f
  | .ok (n, _) => if n.isTooLarge then .malformed else .mismatch

/-- The fault of a value that is not of the kind that is asked for. -/
def wrongKind (c : Char) (rest : List Char) : Fault :=
  match c with
  | 'n' => wordFault ['u', 'l', 'l'] rest
  | 't' => wordFault ['r', 'u', 'e'] rest
  | 'f' => wordFault ['a', 'l', 's', 'e'] rest
  | '-' => numberFault (negatedNumeral rest)
  | '"' =>
    match textFrom true [] rest with
    | .error f => f
    | .ok _ => .mismatch
  | '[' => .mismatch
  | '\x7b' => .mismatch
  | c => if isDigit c then numberFault (numeral c rest) else .malformed

/-! ## Values of a kind -/

/-- Applies a function to what is read. -/
def map {α β : Type} (f : α → β) (read : Reader α) : Reader β := fun input =>
  (read input).map (Taken.map f)

/-- Reads a text. -/
def text : Reader String := fun input =>
  match next input with
  | .finished => .error .endOfInput
  | .char c rest h =>
    if c = '"' then (textFrom true [] rest).map (Taken.after h) else .error (wrongKind c rest)

/-- Reads a truth value. -/
def flag : Reader Bool := fun input =>
  match next input with
  | .finished => .error .endOfInput
  | .char c rest h =>
    if c = 't' then (word ['r', 'u', 'e'] rest).map (Rest.taken · true h)
    else if c = 'f' then (word ['a', 'l', 's', 'e'] rest).map (Rest.taken · false h)
    else .error (wrongKind c rest)

/-- Reads a value that may be `null`. -/
def optional {α : Type} (value : Reader α) : Reader (Option α) := fun input =>
  match next input with
  | .char 'n' rest h => (word ['u', 'l', 'l'] rest).map (Rest.taken · none h)
  | _ => map some value input

/-! ## Arrays -/

/-- What follows in a bracket: its end, or the place where the next entry begins. -/
inductive Entry (input : List Char) where
  | finish (rest : List Char) (shorter : rest.length < input.length)
  | element (start : Rest input)

/-- What follows in a rest follows in the whole. -/
def Entry.after {input rest : List Char} (h : rest.length < input.length) :
    Entry rest → Entry input
  | .finish rest' h' => .finish rest' (Nat.lt_trans h' h)
  | .element start => .element ⟨start.val, Nat.le_of_lt (Nat.lt_of_le_of_lt start.property h)⟩

/-- Looks for the next element of an array; a comma stands before all but the first. -/
def nextElement (isFirst : Bool) (input : List Char) : Except Fault (Entry input) :=
  match next input with
  | .finished => .error .endOfInput
  | .char c rest h =>
    if c = ']' then .ok (.finish rest h)
    else if isFirst then .ok (.element .all)
    else if c = ',' then
      match next rest with
      | .finished => .error .endOfInput
      | .char d _ _ =>
        if d = ']' then .error .malformed else .ok (Entry.after h (.element .all))
    else .error .malformed

/-- A value that was read where an entry begins. -/
def Rest.afterStart {α : Type} {input : List Char} (start : Rest input) (t : Taken α start.val) :
    Taken α input :=
  ⟨t.value, t.rest, Nat.lt_of_lt_of_le t.shorter start.property⟩

/-- Reads the elements of an array up to its end. -/
def elements {α : Type} (element : Reader α) (isFirst : Bool) (input : List Char) :
    Except Fault (Taken (List α) input) :=
  match nextElement isFirst input with
  | .error f => .error f
  | .ok (.finish rest h) => .ok ⟨[], rest, h⟩
  | .ok (.element start) =>
    match element start.val with
    | .error f => .error f
    | .ok ⟨x, rest, h⟩ =>
      (elements element false rest).map fun t =>
        Rest.afterStart start ((t.map (x :: ·)).after h)
termination_by input.length
decreasing_by exact Nat.lt_of_lt_of_le h start.property

/-- Reads an array of values of one kind. -/
def list {α : Type} (element : Reader α) : Reader (List α) := fun input =>
  match next input with
  | .finished => .error .endOfInput
  | .char c rest h =>
    if c = '[' then (elements element true rest).map (Taken.after h)
    else .error (wrongKind c rest)

/-! ## Records -/

/-- The end of an array that has no more elements to give. -/
def arrayEnd (input : List Char) : Except Fault (Taken Unit input) :=
  match next input with
  | .finished => .error .endOfInput
  | .char c rest h => if c = ']' then .ok ⟨(), rest, h⟩ else .error .malformed

/-- Reads the elements of an array into a draft, one for each field. -/
def positions {Draft : Type} (fields : List (Field Reader Draft)) (isFirst : Bool) (draft : Draft)
    (input : List Char) : Except Fault (Taken Draft input) :=
  match fields with
  | [] => (arrayEnd input).map (Taken.map fun _ => draft)
  | field :: fields =>
    match nextElement isFirst input with
    | .error f => .error f
    | .ok (.finish rest h) => .ok ⟨draft, rest, h⟩
    | .ok (.element start) =>
      match field.read start.val with
      | .error f => .error f
      | .ok ⟨update, rest, h⟩ =>
        (positions fields false (update draft) rest).map fun t =>
          Rest.afterStart start (t.after h)

/-- Looks for the next member of an object, behind the quote that opens its name; a comma stands
before all but the first. -/
def nextMember (isFirst : Bool) (input : List Char) : Except Fault (Entry input) :=
  match next input with
  | .finished => .error .endOfInput
  | .char c rest h =>
    if c = '\x7d' then .ok (.finish rest h)
    else if isFirst then
      if c = '"' then .ok (Entry.after h (.element .all)) else .error .malformed
    else if c = ',' then
      match next rest with
      | .finished => .error .endOfInput
      | .char d _ h' =>
        if d = '"' then .ok (Entry.after h (Entry.after h' (.element .all)))
        else .error .malformed
    else .error .malformed

/-- Reads the value of a member into a draft; the value of an unknown name is passed over. -/
def memberValue {Draft : Type} (fields : List (Field Reader Draft)) (name : String)
    (draft : Draft) (input : List Char) : Except Fault (Taken Draft input) :=
  match Format.fieldNamed? fields name with
  | none =>
    match colon input with
    | .error f => .error f
    | .ok ⟨_, rest, h⟩ =>
      (skip [] .value rest).map fun t => (t.map fun _ => draft).after h
  | some field =>
    if field.isSet draft then .error .mismatch
    else
      match colon input with
      | .error f => .error f
      | .ok ⟨_, rest, h⟩ => (field.read rest).map fun t => (t.map (· draft)).after h

/-- Reads the members of an object into a draft, up to its end. -/
def members {Draft : Type} (fields : List (Field Reader Draft)) (isFirst : Bool) (draft : Draft)
    (input : List Char) : Except Fault (Taken Draft input) :=
  match nextMember isFirst input with
  | .error f => .error f
  | .ok (.finish rest h) => .ok ⟨draft, rest, h⟩
  | .ok (.element start) =>
    match textFrom true [] start.val with
    | .error f => .error f
    | .ok ⟨name, rest, h⟩ =>
      match memberValue fields name draft rest with
      | .error f => .error f
      | .ok ⟨draft, rest', h'⟩ =>
        (members fields false draft rest').map fun t =>
          Rest.afterStart start ((t.after h').after h)
termination_by input.length
decreasing_by exact Nat.lt_of_lt_of_le (Nat.lt_trans h' h) start.property

/-- Finishes a draft; a draft that is refused lacks a field. -/
def finishDraft {Draft α : Type} {input rest : List Char} (finish : Draft → Option α)
    (h : rest.length < input.length) (t : Taken Draft rest) : Except Fault (Taken α input) :=
  match finish t.value with
  | none => .error .mismatch
  | some value => .ok ((t.map fun _ => value).after h)

/-- Reads a record: an object, or an array of the fields in order. -/
def record {Draft α : Type} (fields : List (Field Reader Draft)) (start : Draft)
    (finish : Draft → Option α) : Reader α := fun input =>
  match next input with
  | .finished => .error .endOfInput
  | .char c rest h =>
    if c = '[' then (positions fields true start rest).bind (finishDraft finish h)
    else if c = '\x7b' then (members fields true start rest).bind (finishDraft finish h)
    else .error (wrongKind c rest)

instance : Format Reader where
  map := map
  text := text
  flag := flag
  list := list
  optional := optional
  record := record

end Reader

/-- Reads a whole text, after which only blanks may stand. -/
def read {α : Type} (value : Reader α) (content : String) : Except Fault α :=
  match value content.toList with
  | .error f => .error f
  | .ok ⟨x, rest, _⟩ =>
    match Reader.next rest with
    | .finished => .ok x
    | .char _ _ _ => .error .malformed

end Json
end KeywordAudit
