import KeywordAudit.Yaml.Source

/-!
# Block scalars

A block scalar begins with a header, which says how its last line breaks are treated and may give
its indentation; else its first line with text does.  In a literal scalar line breaks stay.  In a
folded one the line break between two lines that begin with no blank counts as a space.
-/

namespace KeywordAudit
namespace Yaml

/-- What becomes of the line breaks at the end of a block scalar. -/
inductive Chomping where
  /-- All are dropped. -/
  | strip
  /-- The first one stays. -/
  | clip
  /-- All stay. -/
  | keep
deriving DecidableEq

/-- The header of a block scalar. -/
structure BlockHeader where
  chomping : Chomping := .clip
  increment : Option Nat := none

/-! ## Headers -/

/-- The way of chomping that a character gives. -/
def chomping? : Char → Option Chomping
  | '+' => some .keep
  | '-' => some .strip
  | _ => none

/-- Takes the sign for the chomping, if it is there. -/
def takeChomping (header : BlockHeader) : List Glyph → BlockHeader × List Glyph
  | [] => (header, [])
  | g :: rest =>
    match chomping? g.char with
    | some chomping => ({ header with chomping := chomping }, rest)
    | none => (header, g :: rest)

/-- Takes the digit for the indentation, if it is there; it is not zero. -/
def takeIncrement (header : BlockHeader) : List Glyph → Option (BlockHeader × List Glyph)
  | [] => some (header, [])
  | g :: rest =>
    if g.char = '0' then none
    else if g.char.isDigit then some ({ header with increment := some (g.char.toNat - 48) }, rest)
    else some (header, g :: rest)

/-- Takes the two signs of a header, which may come in any order. -/
def headerSigns? (gs : List Glyph) : Option (BlockHeader × List Glyph) :=
  if ((first? gs).bind chomping?).isSome then
    let (header, rest) := takeChomping {} gs
    takeIncrement header rest
  else
    (takeIncrement {} gs).map fun (header, rest) =>
      if header.increment.isSome then takeChomping header rest else (header, rest)

/-- Reads the header of a block scalar up to the end of its line. -/
def blockHeader? (gs : List Glyph) : Option (BlockHeader × List Glyph) := do
  let (header, rest) ← headerSigns? gs
  let rest ← skipLineEnd? rest
  return (header, rest)

/-! ## Indentation -/

/-- Passes over the empty lines before the first line with text: their line breaks, the widest
column on the way and the rest.  A tab may not stand in place of indentation. -/
def leadingLines (widest : Nat) (breaks : List Char) :
    List Glyph → Option (List Char × Nat × List Glyph)
  | [] => some (breaks, widest, [])
  | g :: rest =>
    if g.char = ' ' then leadingLines widest breaks rest
    else if g.char = '\t' then none
    else if isBreak g.char then leadingLines (max widest g.column) (g.char :: breaks) rest
    else some (breaks, max widest g.column, g :: rest)

/-! ## Lines -/

/-- The lines of a block scalar that were read so far. -/
structure BlockLines where
  /-- The characters, last one first. -/
  text : List Char := []
  /-- The break after the last line with text. -/
  ending : List Char := []
  /-- The breaks of the empty lines since then, last one first. -/
  empty : List Char := []
  /-- Whether the last line began with a blank. -/
  startedBlank : Bool := false
  /-- Whether the text of a line goes on. -/
  inLine : Bool := false

/-- Begins a line with its first character: the breaks before it are kept or folded. -/
def BlockLines.begin (folded : Bool) (s : BlockLines) (c : Char) : BlockLines :=
  let joint :=
    if folded && s.ending == ['\n'] && !s.startedBlank && !isBlank c then
      if s.empty.isEmpty then [' '] else []
    else s.ending
  { text := c :: (s.empty ++ joint ++ s.text), startedBlank := isBlank c, inLine := true }

/-- Reads the lines that are indented to the given column. -/
def blockLines (folded : Bool) (indent : Nat) (s : BlockLines) :
    List Glyph → Option (BlockLines × List Glyph)
  | [] => some (s, [])
  | g :: rest =>
    if s.inLine then
      if isBreak g.char then
        blockLines folded indent { s with ending := [g.char], inLine := false } rest
      else blockLines folded indent { s with text := g.char :: s.text } rest
    else if g.column < indent && g.char = ' ' then blockLines folded indent s rest
    else if g.column < indent && g.char = '\t' then none
    else if isBreak g.char then
      blockLines folded indent { s with empty := g.char :: s.empty } rest
    else if g.column = indent then blockLines folded indent (s.begin folded g.char) rest
    else some (s, g :: rest)

/-- The whole text, with its last line breaks treated as the header says. -/
def BlockLines.finish (chomping : Chomping) (s : BlockLines) : String :=
  String.ofList <| List.reverse <|
    match chomping with
    | .strip => s.text
    | .clip => s.ending ++ s.text
    | .keep => s.empty ++ s.ending ++ s.text

/-- Reads a block scalar behind its indicator; `parent` is the column of the collection around
it. -/
def blockScalar? (folded : Bool) (parent : Option Nat) (gs : List Glyph) :
    Option (String × List Glyph) := do
  let (header, rest) ← blockHeader? gs
  match header.increment with
  | some increment =>
    let (lines, rest) ← blockLines folded (parent.getD 0 + increment) {} rest
    return (lines.finish header.chomping, rest)
  | none =>
    let (breaks, widest, rest) ← leadingLines 0 [] rest
    let least := max 1 ((parent.map (· + 1)).getD 0)
    let (lines, rest) ← blockLines folded (max widest least) { empty := breaks } rest
    return (lines.finish header.chomping, rest)

end Yaml
end KeywordAudit
