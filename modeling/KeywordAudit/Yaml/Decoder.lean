import KeywordAudit.Format.Schema
import KeywordAudit.Yaml.Anchors
import KeywordAudit.Yaml.Token.Stream

/-!
# Reading records from YAML

A record is a mapping and a list is a sequence; an empty plain scalar stands for a record without
fields and for a list without elements.  Every scalar is a text.  A truth value is one of six
plain words.  A value that may be absent is absent where nothing or a word for it stands.
-/

namespace KeywordAudit
namespace Yaml

/-- Reads a value of some type from a node of a document, with the number of references that may
still be followed. -/
def Decoder (α : Type) : Type := Document → Node Nat → StateT Nat Option α

namespace Decoder

/-- The tag of truth values. -/
def boolTag : String := "tag:yaml.org,2002:bool"

/-- The tag of absent values. -/
def nullTag : String := "tag:yaml.org,2002:null"

/-- The tag that says something about a scalar: a single mark says nothing. -/
def effectiveTag (tag : Option String) : Option String := tag.filter (· ≠ "!")

/-- Reads a text. -/
def text : Decoder String := fun document node => do
  match ← document.resolve node with
  | .scalar _ _ text _ => return text
  | _ => failure

/-- The truth value of a word. -/
def truth? : String → Option Bool
  | "true" | "True" | "TRUE" => some true
  | "false" | "False" | "FALSE" => some false
  | _ => none

/-- Reads a truth value: a plain scalar, or a literal one with the tag of truth values. -/
def flag : Decoder Bool := fun document node => do
  match ← document.resolve node with
  | .scalar _ tag text style =>
    match style, effectiveTag tag with
    | .plain, _ => truth? text
    | .literal, some tag => if tag = boolTag then truth? text else failure
    | _, _ => failure
  | _ => failure

/-- Whether a word stands for an absent value. -/
def isNullWord (word : String) : Bool :=
  word == "null" || word == "Null" || word == "NULL" || word == "~"

/-- What a scalar says about whether a value is there; none if its tag contradicts its text. -/
def isPresent? (tag : Option String) (text : String) (style : Style) : Option Bool :=
  if style ≠ .plain then some true
  else match effectiveTag tag with
    | none => some (text ≠ "" && !isNullWord text)
    | some tag =>
      if tag ≠ nullTag then some true
      else if isNullWord text then some false
      else none

/-- Reads a value that may be absent. -/
def optional {α : Type} (value : Decoder α) : Decoder (Option α) := fun document node => do
  match ← document.resolve node with
  | .scalar anchor tag text style =>
    if ← isPresent? tag text style then some <$> value document (.scalar anchor tag text style)
    else return none
  | node => some <$> value document node

/-- Whether a scalar stands for an empty collection. -/
def isEmptyScalar (text : String) (style : Style) : Bool := text == "" && style == .plain

/-- Reads a list. -/
def list {α : Type} (element : Decoder α) : Decoder (List α) := fun document node => do
  match ← document.resolve node with
  | .sequence _ items => items.mapM (element document)
  | .scalar _ _ text style => if isEmptyScalar text style then return [] else failure
  | _ => failure

/-- Reads the entries of a mapping into a draft. -/
def members {Draft : Type} (fields : List (Field Decoder Draft)) (document : Document) :
    List (Node Nat × Node Nat) → Draft → StateT Nat Option Draft
  | [], draft => return draft
  | (key, value) :: rest, draft => do
    let name ← text document key
    match Format.fieldNamed? fields name with
    | none => members fields document rest draft
    | some field =>
      if field.isSet draft then failure
      else
        let update ← field.read document value
        members fields document rest (update draft)

/-- Reads a record. -/
def record {Draft α : Type} (fields : List (Field Decoder Draft)) (start : Draft)
    (finish : Draft → Option α) : Decoder α := fun document node => do
  match ← document.resolve node with
  | .mapping _ entries =>
    let draft ← members fields document entries start
    finish draft
  | .scalar _ _ text style => if isEmptyScalar text style then finish start else failure
  | _ => failure

instance : Format Decoder where
  map f read := fun document node => f <$> read document node
  text := text
  flag := flag
  list := list
  optional := optional
  record := record

end Decoder

/-- The only document of a text. -/
def document? (content : String) : Option Document := do
  let tokens ← tokens? content
  let root ← Node.ofTokens? tokens
  Document.ofNode? root

/-- Reads a whole text. -/
def read? {α : Type} (value : Decoder α) (content : String) : Option α := do
  let document ← document? content
  (value document document.root).run' document.referenceLimit

end Yaml
end KeywordAudit
