import KeywordAudit.Format.Schema

/-!
# JSON values

JSON values and the reading of records from them.  A record is an object, in which unknown names
are ignored, or an array of its fields in order, in which fields at the end may be left out.
-/

namespace KeywordAudit

/-- A JSON value; the members of an object are kept in order. -/
inductive Json where
  | null
  | bool (value : Bool)
  | number (literal : String)
  | string (value : String)
  | array (elements : List Json)
  | object (members : List (String × Json))
deriving Inhabited, Repr

namespace Json

/-- The value of a natural number. -/
def nat (n : Nat) : Json := number (toString n)

/-- The array of a list of texts. -/
def strings (xs : List String) : Json := array (xs.map string)

/-- Reads a value of some type from a JSON value. -/
def Decoder (α : Type) : Type := Json → Option α

namespace Decoder

/-- Reads a text. -/
def text : Decoder String
  | .string s => some s
  | _ => none

/-- Reads a truth value. -/
def flag : Decoder Bool
  | .bool b => some b
  | _ => none

/-- Reads an array of values of one kind. -/
def list {α : Type} (element : Decoder α) : Decoder (List α)
  | .array xs => xs.mapM element
  | _ => none

/-- Reads a value that may be `null`. -/
def optional {α : Type} (value : Decoder α) : Decoder (Option α)
  | .null => some none
  | v => (value v).map some

/-- Reads the members of an object into a draft. -/
def members {Draft : Type} (fields : List (Field Decoder Draft)) :
    List (String × Json) → Draft → Option Draft
  | [], draft => some draft
  | (key, value) :: rest, draft =>
    match Format.fieldNamed? fields key with
    | none => members fields rest draft
    | some field =>
      if field.isSet draft then none
      else (field.read value).bind fun update => members fields rest (update draft)

/-- Reads the elements of an array into a draft, one for each field. -/
def positions {Draft : Type} : List (Field Decoder Draft) → List Json → Draft → Option Draft
  | _, [], draft => some draft
  | [], _ :: _, _ => none
  | field :: fields, value :: values, draft =>
    (field.read value).bind fun update => positions fields values (update draft)

/-- Reads a record. -/
def record {Draft α : Type} (fields : List (Field Decoder Draft)) (start : Draft)
    (finish : Draft → Option α) : Decoder α
  | .object entries => (members fields entries start).bind finish
  | .array values => (positions fields values start).bind finish
  | _ => none

instance : Format Decoder where
  map f read := fun v => (read v).map f
  text := text
  flag := flag
  list := list
  optional := optional
  record := record

end Decoder
end Json
end KeywordAudit
