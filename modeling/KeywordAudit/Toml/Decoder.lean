import KeywordAudit.Format.Schema
import KeywordAudit.Toml.Document

/-!
# Reading records from TOML

Kinds must agree exactly.  A record is a table, or an array of its fields in order, in which
fields at the end may be left out and elements behind the last field are ignored; a date or time
counts as a record without fields.
-/

namespace KeywordAudit
namespace Toml

/-- Reads a value of some type from a TOML value. -/
def Decoder (α : Type) : Type := Value → Option α

namespace Decoder

/-- Reads a text. -/
def text : Decoder String
  | .text s => some s
  | _ => none

/-- Reads a truth value. -/
def flag : Decoder Bool
  | .flag b => some b
  | _ => none

/-- The elements of an array, written in brackets or by headers. -/
def elements? : Value → Option (List Value)
  | .array vs => some vs
  | .tables ts => some (ts.reverse.map (Value.table .headed))
  | _ => none

/-- Reads a list. -/
def list {α : Type} (element : Decoder α) : Decoder (List α) := fun v =>
  (elements? v).bind fun vs => vs.mapM element

/-- Reads a value that may be absent: here it is present. -/
def optional {α : Type} (value : Decoder α) : Decoder (Option α) := fun v =>
  (value v).map some

/-- Reads the entries of a table into a draft. -/
def members {Draft : Type} (fields : List (Field Decoder Draft)) :
    Entries → Draft → Option Draft
  | [], draft => some draft
  | (key, value) :: rest, draft =>
    match Format.fieldNamed? fields key with
    | none => members fields rest draft
    | some field => (field.read value).bind fun update => members fields rest (update draft)

/-- Reads the elements of an array into a draft, one for each field. -/
def positions {Draft : Type} : List (Field Decoder Draft) → List Value → Draft → Option Draft
  | field :: fields, value :: values, draft =>
    (field.read value).bind fun update => positions fields values (update draft)
  | _, _, draft => some draft

/-- Reads a record. -/
def record {Draft α : Type} (fields : List (Field Decoder Draft)) (start : Draft)
    (finish : Draft → Option α) : Decoder α := fun v =>
  match v with
  | .table _ entries => (members fields entries start).bind finish
  | .moment => finish start
  | v => (elements? v).bind fun vs => (positions fields vs start).bind finish

instance : Format Decoder where
  map f read := fun v => (read v).map f
  text := text
  flag := flag
  list := list
  optional := optional
  record := record

end Decoder

/-- Reads a whole text. -/
def read? {α : Type} (value : Decoder α) (content : String) : Option α :=
  (document? content).bind value

end Toml
end KeywordAudit
