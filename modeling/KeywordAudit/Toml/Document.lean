import KeywordAudit.Toml.Number
import KeywordAudit.Toml.Text

/-!
# TOML documents

A document is a list of lines: headers, and keys with their values.  Arrays and inline tables may
be nested 79 deep.
-/

namespace KeywordAudit
namespace Toml

/-! ## Blanks and remarks -/

/-- The rest after the blanks in front. -/
def skipBlanks (cs : List Char) : List Char := cs.dropWhile isBlank

/-- The rest after the remark in front, if there is one. -/
def skipRemark : List Char → List Char
  | '#' :: rest => rest.dropWhile isPlainChar
  | cs => cs

/-- The rest after the end of a line, which may have blanks and a remark. -/
def lineEnd? (cs : List Char) : Option (List Char) :=
  match skipRemark (skipBlanks cs) with
  | [] => some []
  | cs => afterBreak? cs

/-- The rest after blanks, remarks and line breaks.  Each round takes a character, so the number
of characters bounds the rounds. -/
def skipLines : (rounds : Nat) → List Char → List Char
  | 0, cs => cs
  | rounds + 1, cs =>
    match afterBreak? (skipRemark (skipBlanks cs)) with
    | some rest => skipLines rounds rest
    | none =>
      match skipBlanks cs with
      | '#' :: rest => '#' :: rest
      | rest => rest

/-- The rest after blanks, remarks and line breaks. -/
def skipSpace (cs : List Char) : List Char := skipLines cs.length cs

/-! ## Keys -/

/-- The characters of a key without quotes. -/
def isKeyChar (c : Char) : Bool := c.isAlphanum || c == '_' || c == '-'

/-- Reads one part of a key. -/
def keyPart? (cs : List Char) : Option (String × List Char) :=
  match lineText? cs with
  | some result => some result
  | none =>
    let name := cs.takeWhile isKeyChar
    if name.isEmpty then none else some (String.ofList name, cs.dropWhile isKeyChar)

/-- Reads the parts of a key, which are divided by dots.  There are fewer than 80. -/
def keyParts? : (parts : Nat) → List Char → Option (List String × List Char)
  | 0, _ => none
  | parts + 1, cs => do
    let (part, rest) ← keyPart? (skipBlanks cs)
    match skipBlanks rest with
    | '.' :: rest => do
      let (more, rest) ← keyParts? parts rest
      return (part :: more, rest)
    | rest => some ([part], rest)

/-- Reads a key: the path to its table and its last part. -/
def key? (cs : List Char) : Option (List String × String × List Char) := do
  let (parts, rest) ← keyParts? 79 cs
  let last ← parts.getLast?
  return (parts.dropLast, last, rest)

/-! ## Values -/

/-- Reads the elements of an array up to its closing bracket. -/
def elements? (element : List Char → Option (Value × List Char)) :
    (rounds : Nat) → (before : List Value) → List Char → Option (List Value × List Char)
  | 0, _, _ => none
  | rounds + 1, before, cs =>
    match skipSpace cs with
    | ']' :: rest => some (before.reverse, rest)
    | cs => do
      let (value, rest) ← element cs
      match skipSpace rest with
      | ',' :: rest => elements? element rounds (value :: before) rest
      | ']' :: rest => some ((value :: before).reverse, rest)
      | _ => none

/-- Reads a key and its value, and puts them into a table. -/
def entry? (value : List Char → Option (Value × List Char)) (entries : Entries)
    (cs : List Char) : Option (Entries × List Char) := do
  let (path, key, rest) ← key? cs
  let rest ← after? '=' rest
  let (v, rest) ← value (skipBlanks rest)
  let entries ← entries.put path key v
  return (entries, rest)

/-- Reads the entries of an inline table up to its closing bracket. -/
def inlineEntries? (value : List Char → Option (Value × List Char)) :
    (rounds : Nat) → Entries → List Char → Option (Entries × List Char)
  | 0, _, _ => none
  | rounds + 1, entries, cs => do
    let (entries, rest) ← entry? value entries cs
    match skipBlanks rest with
    | ',' :: rest => inlineEntries? value rounds entries rest
    | '\x7d' :: rest => some (entries, rest)
    | _ => none

/-- Reads an inline table behind its opening bracket. -/
def inlineTable? (value : List Char → Option (Value × List Char)) (cs : List Char) :
    Option (Entries × List Char) :=
  match skipBlanks cs with
  | '\x7d' :: rest => some ([], rest)
  | cs => inlineEntries? value (cs.length + 1) [] cs

/-- Reads a value in which collections may be nested to the given depth. -/
def value? : (depth : Nat) → List Char → Option (Value × List Char)
  | depth, '[' :: rest =>
    match depth with
    | 0 => none
    | depth + 1 =>
      (elements? (value? depth) (rest.length + 1) [] rest).map fun (vs, rest) =>
        (.array vs, rest)
  | depth, '\x7b' :: rest =>
    match depth with
    | 0 => none
    | depth + 1 =>
      (inlineTable? (value? depth) rest).map fun (entries, rest) =>
        (.table .inline entries, rest)
  | _, '"' :: rest => (text? ('"' :: rest)).map fun (s, rest) => (.text s, rest)
  | _, '\'' :: rest => (text? ('\'' :: rest)).map fun (s, rest) => (.text s, rest)
  | _, 't' :: 'r' :: 'u' :: 'e' :: rest => some (.flag true, rest)
  | _, 'f' :: 'a' :: 'l' :: 's' :: 'e' :: rest => some (.flag false, rest)
  | _, cs => numberOrMoment? cs

/-- How deep collections may be nested. -/
def nestingLimit : Nat := 79

/-! ## Lines -/

/-- A document that is being read: the last header and the outermost table. -/
structure Draft where
  header : List String := []
  entries : Entries := []

/-- Reads a header behind its opening brackets, up to the end of its line. -/
def header? (closing : List Char) (cs : List Char) :
    Option (List String × String × List Char) := do
  let (path, key, rest) ← key? cs
  let rest ← if closing.isPrefixOf rest then some (rest.drop closing.length) else none
  let rest ← lineEnd? rest
  return (path, key, rest)

/-- Reads the next line: an empty one, a header, or a key with its value. -/
def line? (draft : Draft) (cs : List Char) : Option (Draft × List Char) :=
  match lineEnd? cs with
  | some rest => some (draft, rest)
  | none =>
    match skipBlanks cs with
    | '[' :: '[' :: rest => do
      let (path, key, rest) ← header? [']', ']'] rest
      let entries ← draft.entries.beginElement path key
      return ({ header := path ++ [key], entries := entries }, rest)
    | '[' :: rest => do
      let (path, key, rest) ← header? [']'] rest
      let entries ← draft.entries.beginTable path key
      return ({ header := path ++ [key], entries := entries }, rest)
    | cs => do
      let (path, key, rest) ← key? cs
      let rest ← after? '=' rest
      let (v, rest) ← value? nestingLimit (skipBlanks rest)
      let entries ← draft.entries.putUnder draft.header path key v
      let rest ← lineEnd? rest
      return ({ draft with entries := entries }, rest)

/-- Reads all lines.  Each takes a character, so the number of characters bounds the rounds. -/
def lines? : (rounds : Nat) → Draft → List Char → Option Entries
  | _, draft, [] => some draft.entries
  | 0, _, _ :: _ => none
  | rounds + 1, draft, cs => do
    let (draft, rest) ← line? draft cs
    lines? rounds draft rest

/-- The table of a whole text, which may begin with a byte order mark. -/
def document? (content : String) : Option Value :=
  let cs :=
    match content.toList with
    | [] => []
    | c :: rest => if c = '\ufeff' then rest else c :: rest
  (lines? cs.length {} cs).map (.table .headed)

end Toml
end KeywordAudit
