import KeywordAudit.Text.Hex
import KeywordAudit.Yaml.Source
import KeywordAudit.Yaml.Token

/-!
# Tags, anchors and directives

The tokens that begin with an exclamation mark, an ampersand, an asterisk or a percent sign.
-/

namespace KeywordAudit
namespace Yaml

/-! ## Anchors and references -/

/-- The characters that may follow a name without a blank. -/
def mayFollowName (c : Char) : Bool :=
  c == '?' || c == ':' || c == ',' || c == ']' || c == '\x7d' || c == '%' || c == '@' || c == '`'

/-- Reads the name of an anchor or a reference behind its indicator. -/
def anchorName? (gs : List Glyph) : Option (String × List Glyph) :=
  let (name, rest) := takeChars isWordChar gs
  if name.isEmpty then none
  else if atGap rest || (first? rest).any mayFollowName then some (String.ofList name, rest)
  else none

/-! ## Parts of tags -/

/-- The punctuation that may stand in a tag. -/
def isTagMark (c : Char) : Bool :=
  [';', '/', '?', ':', '@', '&', '=', '+', '$', '.', '!', '~', '*', '\'', '(', ')'].contains c

/-- The punctuation that may stand in a tag only where brackets cannot be meant. -/
def isWideTagMark (c : Char) : Bool := c == ',' || c == '[' || c == ']'

/-- The number of bytes of a character whose first byte is given. -/
def byteCount? (byte : Nat) : Option Nat :=
  if byte < 0x80 then some 1
  else if 0xC0 ≤ byte && byte < 0xE0 then some 2
  else if 0xE0 ≤ byte && byte < 0xF0 then some 3
  else if 0xF0 ≤ byte && byte < 0xF8 then some 4
  else none

/-- Reads one byte, written as a percent sign and two hexadecimal digits. -/
def codedByte? : List Glyph → Option Nat
  | p :: a :: b :: _ => if p.char = '%' then Text.hexNumber? 2 0 [a.char, b.char] else none
  | _ => none

/-- Reads the further bytes of a character. -/
def furtherBytes? : (count value : Nat) → List Glyph → Option Nat
  | 0, value, _ => some value
  | count + 1, value, gs =>
    (codedByte? gs).bind fun byte =>
      if 0x80 ≤ byte && byte < 0xC0 then
        furtherBytes? count (value * 64 + (byte - 0x80)) (gs.drop 3)
      else none

/-- Reads a character that is written byte by byte, and tells how many glyphs it takes. -/
def codedChar? (gs : List Glyph) : Option (Char × Nat) := do
  let byte ← codedByte? gs
  let count ← byteCount? byte
  let start := if count = 1 then byte else byte % Nat.pow 2 (7 - count)
  let code ← furtherBytes? (count - 1) start (gs.drop 3)
  return (Char.ofNat code, 3 * count)

/-- Reads the characters of a tag. -/
def tagChars? (wide : Bool) (text : List Char) (gs : List Glyph) :
    Option (List Char × List Glyph) :=
  match gs with
  | [] => some (text.reverse, [])
  | g :: rest =>
    if g.char = '%' then
      match codedChar? (g :: rest) with
      | some (c, count) => tagChars? wide (c :: text) (rest.drop (count - 1))
      | none => none
    else if isWordChar g.char || isTagMark g.char || (wide && isWideTagMark g.char) then
      tagChars? wide (g.char :: text) rest
    else some (text.reverse, g :: rest)
termination_by gs.length

/-- Reads the handle of a tag: an exclamation mark, a name that may be empty, and perhaps a
second mark. -/
def tagHandle? : List Glyph → Option (List Char × List Glyph)
  | [] => none
  | g :: rest =>
    if g.char = '!' then
      let (name, rest) := takeChars isWordChar rest
      if first? rest = some '!' then some ('!' :: name ++ ['!'], rest.drop 1)
      else some ('!' :: name, rest)
    else none

/-- Whether a handle ends in a mark of its own. -/
def isClosedHandle (handle : List Char) : Bool :=
  handle.length ≥ 2 && handle.getLast? = some '!'

/-! ## Tags -/

/-- Reads the handle and the suffix of a tag.  A tag in angle brackets has no handle, and the
tag that is a single mark is a suffix without handle. -/
def tagParts? (gs : List Glyph) : Option (String × String × List Glyph) :=
  if (gs.drop 1).head?.map Glyph.char = some '<' then do
    let (suffix, rest) ← tagChars? true [] (gs.drop 2)
    if suffix.isEmpty then none
    else if first? rest = some '>' then some ("", String.ofList suffix, rest.drop 1)
    else none
  else do
    let (handle, rest) ← tagHandle? gs
    if isClosedHandle handle then
      let (suffix, rest) ← tagChars? false [] rest
      if suffix.isEmpty then none
      else some (String.ofList handle, String.ofList suffix, rest)
    else
      let (suffix, rest) ← tagChars? false (handle.drop 1).reverse rest
      if suffix.isEmpty then some ("", "!", rest) else some ("!", String.ofList suffix, rest)

/-- Reads a tag; a blank follows it, or inside of flow brackets a comma. -/
def tag? (inFlow : Bool) (gs : List Glyph) : Option (Token × List Glyph) := do
  let (handle, suffix, rest) ← tagParts? gs
  if atGap rest || (inFlow && first? rest = some ',') then some (.tag handle suffix, rest)
  else none

/-! ## Directives -/

/-- Reads a number of at most nine digits. -/
def versionNumber? (gs : List Glyph) : Option (Nat × List Glyph) :=
  let (digits, rest) := takeChars Char.isDigit gs
  if digits.isEmpty || digits.length > 9 then none
  else some (digits.foldl (fun n d => n * 10 + (d.toNat - 48)) 0, rest)

/-- Reads the version that a directive gives. -/
def versionDirective? (gs : List Glyph) : Option (Token × List Glyph) := do
  let (major, rest) ← versionNumber? (skipBlanks gs)
  if first? rest = some '.' then
    let (minor, rest) ← versionNumber? (rest.drop 1)
    return (.version major minor, rest)
  else none

/-- Reads the handle that a directive gives, and what it stands for. -/
def tagDirective? (gs : List Glyph) : Option (Token × List Glyph) := do
  let (handle, rest) ← tagHandle? (skipBlanks gs)
  if handle ≠ ['!'] && !isClosedHandle handle then none
  else if !(first? rest).any isBlank then none
  else
    let (expansion, rest) ← tagChars? true [] (skipBlanks rest)
    if expansion.isEmpty || !atGap rest then none
    else some (.tagHandle (String.ofList handle) (String.ofList expansion), rest)

/-- Reads a directive behind its percent sign, up to the end of its line. -/
def directive? (gs : List Glyph) : Option (Token × List Glyph) := do
  let (name, rest) := takeChars isWordChar gs
  if !atGap rest then none
  else
    let (token, rest) ←
      if name = ['Y', 'A', 'M', 'L'] then versionDirective? rest
      else if name = ['T', 'A', 'G'] then tagDirective? rest
      else none
    let rest ← skipLineEnd? rest
    return (token, rest)

end Yaml
end KeywordAudit
