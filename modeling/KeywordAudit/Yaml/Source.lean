/-!
# YAML text

The characters of a YAML text, each with the place where it stands.  Only printable characters,
tabs and line breaks are allowed.  A carriage return, a line feed, the two together and the next
line character all count as one line feed; the line and paragraph separators are line breaks that
stay what they are.
-/

namespace KeywordAudit
namespace Yaml

/-- A character of the text: its line and column, and the number of bytes before it. -/
structure Glyph where
  char : Char
  line : Nat
  column : Nat
  offset : Nat
deriving Repr, Inhabited

/-! ## Kinds of characters -/

/-- Whether a character may stand in a YAML text. -/
def isAllowed (c : Char) : Bool :=
  let n := c.toNat
  n == 0x09 || n == 0x0A || n == 0x0D || (0x20 ≤ n && n ≤ 0x7E) || n == 0x85
    || (0xA0 ≤ n && n ≤ 0xD7FF) || (0xE000 ≤ n && n ≤ 0xFFFD) || 0x10000 ≤ n

/-- The mark that may stand at the beginning of a text or a line. -/
def byteOrderMark : Char := '\ufeff'

/-- Spaces and tabs. -/
def isBlank (c : Char) : Bool := c == ' ' || c == '\t'

/-- The line breaks that glyphs have. -/
def isBreak (c : Char) : Bool := c == '\n' || c == '\u2028' || c == '\u2029'

/-- Blanks and line breaks. -/
def isSpace (c : Char) : Bool := isBlank c || isBreak c

/-- Letters, digits, the underscore and the hyphen, of which names are made. -/
def isWordChar (c : Char) : Bool := c.isAlphanum || c == '_' || c == '-'

/-! ## Glyphs -/

/-- The glyphs of the characters from a place on. -/
def glyphsFrom (line column offset : Nat) : List Char → List Glyph
  | [] => []
  | '\r' :: '\n' :: rest =>
    ⟨'\n', line, column, offset⟩ :: glyphsFrom (line + 1) 0 (offset + 2) rest
  | c :: rest =>
    if c == '\n' || c == '\r' || c == '\x85' then
      ⟨'\n', line, column, offset⟩ :: glyphsFrom (line + 1) 0 (offset + c.utf8Size) rest
    else if isBreak c then
      ⟨c, line, column, offset⟩ :: glyphsFrom (line + 1) 0 (offset + c.utf8Size) rest
    else ⟨c, line, column, offset⟩ :: glyphsFrom line (column + 1) (offset + c.utf8Size) rest

/-- The glyphs of a text, without the mark at its beginning; none if it has a character that is
not allowed. -/
def glyphs? (text : String) : Option (List Glyph) :=
  let chars :=
    match text.toList with
    | [] => []
    | c :: rest => if c = byteOrderMark then rest else c :: rest
  if chars.all isAllowed then some (glyphsFrom 0 0 0 chars) else none

/-! ## Looking ahead -/

/-- The next character. -/
def first? (gs : List Glyph) : Option Char := gs.head?.map Glyph.char

/-- Whether the text ends here, or goes on with a blank or a line break. -/
def atGap : List Glyph → Bool
  | [] => true
  | g :: _ => isSpace g.char

/-- Whether the text ends here, or goes on with a line break. -/
def atLineEnd : List Glyph → Bool
  | [] => true
  | g :: _ => isBreak g.char

/-- The mark between documents that stands here: three hyphens or three dots at the beginning of
a line. -/
def marker? : List Glyph → Option Char
  | a :: b :: c :: rest =>
    if a.column = 0 && (a.char == '-' || a.char == '.') && b.char == a.char && c.char == a.char
      && atGap rest then some a.char
    else none
  | _ => none

/-- The characters of the glyphs in front that satisfy a test, and the rest. -/
def takeChars (test : Char → Bool) (gs : List Glyph) : List Char × List Glyph :=
  ((gs.takeWhile fun g => test g.char).map Glyph.char, gs.dropWhile fun g => test g.char)

/-- The rest after the blanks in front. -/
def skipBlanks (gs : List Glyph) : List Glyph := gs.dropWhile fun g => isBlank g.char

/-- The rest after the line break in front, if there is one. -/
def skipBreak : List Glyph → List Glyph
  | [] => []
  | g :: rest => if isBreak g.char then rest else g :: rest

/-- The rest after the blanks and the remark that may end a line; none if something else stands
there. -/
def skipLineEnd? (gs : List Glyph) : Option (List Glyph) :=
  let gs := skipBlanks gs
  let gs := if first? gs = some '#' then gs.dropWhile fun g => !isBreak g.char else gs
  if atLineEnd gs then some (skipBreak gs) else none

end Yaml
end KeywordAudit
