import KeywordAudit.Yaml.Scalar.Block
import KeywordAudit.Yaml.Scalar.Plain
import KeywordAudit.Yaml.Scalar.Quoted
import KeywordAudit.Yaml.Tag

/-!
# The tokens of a text

The text is cut into tokens from left to right.  A key of a mapping is known only by the colon
behind it: where a key may begin, the place is remembered, and when a colon comes on the same line
and not too far away, the tokens for the key are put in at that place.  Block collections begin
and end with the columns of their entries.
-/

namespace KeywordAudit
namespace Yaml

/-- A place where a key may have begun. -/
structure KeyPlace where
  /-- How many tokens stand before it. -/
  number : Nat
  /-- Whether the entries of a block mapping stand in its column, so that a colon must come. -/
  required : Bool
  line : Nat
  column : Nat
  offset : Nat

/-- The state between two tokens. -/
structure Cutter where
  rest : List Glyph
  /-- The tokens, last one first. -/
  tokens : List Token := []
  /-- How many tokens there are. -/
  count : Nat := 0
  /-- The columns of the open block collections, innermost first. -/
  blocks : List Nat := []
  /-- The key that may have begun inside of the innermost brackets. -/
  key : Option KeyPlace := none
  /-- The same for the brackets around them, one entry for each open bracket. -/
  outerKeys : List (Option KeyPlace) := []
  /-- Whether a key may begin here. -/
  keyAllowed : Bool := true

namespace Cutter

/-- Whether brackets are open. -/
def inFlow (c : Cutter) : Bool := !c.outerKeys.isEmpty

/-- Adds a token. -/
def emit (c : Cutter) (t : Token) : Cutter :=
  { c with tokens := t :: c.tokens, count := c.count + 1 }

/-- Puts a token behind all but the last ones, in a list that has the last one first. -/
def insertBefore : (last : Nat) → Token → List Token → List Token
  | 0, t, ts => t :: ts
  | n + 1, t, u :: ts => u :: insertBefore n t ts
  | _ + 1, t, [] => [t]

/-- Adds a token at an earlier place. -/
def emitAt (c : Cutter) (number : Nat) (t : Token) : Cutter :=
  { c with tokens := insertBefore (c.count - number) t c.tokens, count := c.count + 1 }

/-! ## Keys -/

/-- Forgets the key that may have begun; a required one must not be forgotten. -/
def dropKey (c : Cutter) : Option Cutter :=
  if c.key.any KeyPlace.required then none else some { c with key := none }

/-- Remembers that a key may begin at a glyph. -/
def saveKey (c : Cutter) (g : Glyph) : Option Cutter :=
  if c.keyAllowed then
    (dropKey c).map fun c =>
      { c with key := some {
          number := c.count
          required := !c.inFlow && c.blocks.head? == some g.column
          line := g.line
          column := g.column
          offset := g.offset } }
  else some c

/-- Forgets a key that began on another line, or more than 1024 bytes before the glyph. -/
def staleKey (g : Glyph) : Option KeyPlace → Option (Option KeyPlace)
  | none => some none
  | some k =>
    if k.line < g.line || k.offset + 1024 < g.offset then
      if k.required then none else some none
    else some (some k)

/-- Forgets the keys that are too far away. -/
def dropStale (c : Cutter) (g : Glyph) : Option Cutter := do
  let key ← staleKey g c.key
  let outerKeys ← c.outerKeys.mapM (staleKey g)
  return { c with key := key, outerKeys := outerKeys }

/-! ## Block collections -/

/-- Begins a block collection at a column that is inside of the innermost one. -/
def openBlock (c : Cutter) (column : Nat) (start : Cutter → Cutter) : Cutter :=
  if !c.inFlow && c.blocks.head?.all (· < column) then
    start { c with blocks := column :: c.blocks }
  else c

/-- Ends the block collections whose columns are right of a place; without a place, all. -/
def closeBlocks (c : Cutter) (column : Option Nat) : Cutter :=
  if c.inFlow then c
  else
    let ended := c.blocks.takeWhile fun b => column.all (· < b)
    { c with
      tokens := ended.map (fun _ => Token.blockEnd) ++ c.tokens
      count := c.count + ended.length
      blocks := c.blocks.drop ended.length }

/-! ## White space between tokens -/

/-- Passes over blanks, remarks and line breaks.  A tab is not passed over where a key may begin,
and outside of brackets a key may begin after a line break. -/
def skipToToken (inFlow : Bool) (inRemark keyAllowed : Bool) : List Glyph → Bool × List Glyph
  | [] => (keyAllowed, [])
  | g :: rest =>
    if isBreak g.char then skipToToken inFlow false (keyAllowed || !inFlow) rest
    else if inRemark || g.char = ' ' || (g.column = 0 && g.char = byteOrderMark)
        || (g.char = '\t' && (inFlow || !keyAllowed)) then
      skipToToken inFlow inRemark keyAllowed rest
    else if g.char = '#' then skipToToken inFlow true keyAllowed rest
    else (keyAllowed, g :: rest)

/-! ## Single tokens -/

/-- Cuts a token off that ends every block. -/
def cutAtMargin (c : Cutter) : Option Cutter :=
  (c.closeBlocks none).dropKey.map fun c => { c with keyAllowed := false }

/-- Cuts an opening bracket off. -/
def cutOpen (c : Cutter) (g : Glyph) (rest : List Glyph) (t : Token) : Option Cutter := do
  let c ← c.saveKey g
  return { c.emit t with
    rest := rest, key := none, outerKeys := c.key :: c.outerKeys, keyAllowed := true }

/-- Cuts a closing bracket off. -/
def cutClose (c : Cutter) (rest : List Glyph) (t : Token) : Option Cutter := do
  let c ← c.dropKey
  return { c.emit t with
    rest := rest, key := c.outerKeys.head?.getD none, outerKeys := c.outerKeys.drop 1,
    keyAllowed := false }

/-- Cuts a comma off. -/
def cutComma (c : Cutter) (rest : List Glyph) : Option Cutter := do
  let c ← c.dropKey
  return { c.emit .flowEntry with rest := rest, keyAllowed := true }

/-- Cuts a hyphen off that begins the entry of a block sequence. -/
def cutHyphen (c : Cutter) (g : Glyph) (rest : List Glyph) : Option Cutter :=
  if !c.inFlow && !c.keyAllowed then none
  else do
    let c ← (c.openBlock g.column (·.emit .blockSequence)).dropKey
    return { c.emit .blockEntry with rest := rest, keyAllowed := true }

/-- Cuts a question mark off that begins a key. -/
def cutQuestion (c : Cutter) (g : Glyph) (rest : List Glyph) : Option Cutter :=
  if !c.inFlow && !c.keyAllowed then none
  else do
    let c ← (c.openBlock g.column (·.emit .blockMapping)).dropKey
    return { c.emit .key with rest := rest, keyAllowed := !c.inFlow }

/-- Cuts a colon off that begins a value. -/
def cutColon (c : Cutter) (g : Glyph) (rest : List Glyph) : Option Cutter :=
  match c.key with
  | some k =>
    let c := (c.emitAt k.number .key).openBlock k.column (·.emitAt k.number .blockMapping)
    some { c.emit .value with rest := rest, key := none, keyAllowed := false }
  | none =>
    if !c.inFlow && !c.keyAllowed then none
    else
      let c := c.openBlock g.column (·.emit .blockMapping)
      some { c.emit .value with rest := rest, keyAllowed := !c.inFlow }

/-- Cuts a token off that may begin a key. -/
def cutNode (c : Cutter) (g : Glyph) (read : Option (Token × List Glyph)) : Option Cutter := do
  let c ← c.saveKey g
  let (token, rest) ← read
  return { c.emit token with rest := rest, keyAllowed := false }

/-- Cuts a block scalar off. -/
def cutBlockScalar (c : Cutter) (rest : List Glyph) (style : Style) : Option Cutter := do
  let c ← c.dropKey
  let (text, rest) ← blockScalar? (style = .folded) c.blocks.head? rest
  return { c.emit (.scalar text style) with rest := rest, keyAllowed := true }

/-- Cuts a plain scalar off. -/
def cutPlain (c : Cutter) (g : Glyph) (gs : List Glyph) : Option Cutter := do
  let c ← c.saveKey g
  let scalar ← plainFrom c.inFlow ((c.blocks.head?.map (· + 1)).getD 0) [] [] gs
  return { c.emit (.scalar scalar.text .plain) with
    rest := scalar.rest, keyAllowed := scalar.lineEnded }

/-- The characters that begin no plain scalar. -/
def isIndicator (c : Char) : Bool :=
  ['-', '?', ':', ',', '[', ']', '\x7b', '\x7d', '#', '&', '*', '!', '|', '>', '\'', '"', '%',
    '@', '`'].contains c

/-- Whether a plain scalar begins with a character before the given rest. -/
def beginsPlain (c : Cutter) (g : Glyph) (rest : List Glyph) : Bool :=
  (!isSpace g.char && !isIndicator g.char)
    || (g.char = '-' && !(first? rest).any isBlank)
    || (!c.inFlow && (g.char = '?' || g.char = ':') && !atGap rest)

/-- Cuts the token off that begins with a glyph. -/
def cut (c : Cutter) (g : Glyph) (rest : List Glyph) : Option Cutter :=
  if g.column = 0 && g.char = '%' then do
    let c ← c.cutAtMargin
    let (token, rest) ← directive? rest
    return { c.emit token with rest := rest }
  else if let some m := marker? (g :: rest) then do
    let c ← c.cutAtMargin
    return { c.emit (if m = '-' then .documentStart else .documentEnd) with rest := rest.drop 2 }
  else match g.char with
    | '[' => c.cutOpen g rest .openSequence
    | '\x7b' => c.cutOpen g rest .openMapping
    | ']' => c.cutClose rest .closeSequence
    | '\x7d' => c.cutClose rest .closeMapping
    | ',' => c.cutComma rest
    | '*' => c.cutNode g ((anchorName? rest).map fun (name, rest) => (.reference name, rest))
    | '&' => c.cutNode g ((anchorName? rest).map fun (name, rest) => (.anchor name, rest))
    | '!' => c.cutNode g (tag? c.inFlow (g :: rest))
    | '\'' =>
      c.cutNode g ((singleQuotedFrom [] [] rest).map fun (text, rest) =>
        (.scalar text .singleQuoted, rest))
    | '"' =>
      c.cutNode g ((doubleQuotedFrom false [] [] rest).map fun (text, rest) =>
        (.scalar text .doubleQuoted, rest))
    | char =>
      if char = '-' && atGap rest then c.cutHyphen g rest
      else if char = '?' && (c.inFlow || atGap rest) then c.cutQuestion g rest
      else if char = ':' && (c.inFlow || atGap rest) then c.cutColon g rest
      else if char = '|' && !c.inFlow then c.cutBlockScalar rest .literal
      else if char = '>' && !c.inFlow then c.cutBlockScalar rest .folded
      else if c.beginsPlain g rest then c.cutPlain g (g :: rest)
      else none

/-- Cuts all tokens off.  Each takes a glyph, so the number of glyphs bounds the number of
rounds. -/
def run : (rounds : Nat) → Cutter → Option (List Token)
  | 0, _ => none
  | rounds + 1, c =>
    match skipToToken c.inFlow false c.keyAllowed c.rest with
    | (_, []) => c.cutAtMargin.map fun c => c.tokens.reverse
    | (keyAllowed, g :: rest) => do
      let c ← dropStale { c with keyAllowed := keyAllowed } g
      let c ← (c.closeBlocks (some g.column)).cut g rest
      run rounds c

end Cutter

/-- The tokens of a text; none if it is malformed. -/
def tokens? (text : String) : Option (List Token) := do
  let gs ← glyphs? text
  Cutter.run (gs.length + 1) { rest := gs }

end Yaml
end KeywordAudit
